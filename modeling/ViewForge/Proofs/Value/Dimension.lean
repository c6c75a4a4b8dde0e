import Mathlib.Data.List.Nodup
import ViewForge.Proofs.Task
import ViewForge.Value.Dimension

/-! How entries with and without names come to their places. What is given by name and what is left
for the others does not depend on where the names stand, so all is told by the names, their values
and the values without one, in order. The four edges are assigned in the same way, once an entry for
two of them is written as two entries. -/
namespace ViewForge

theorem Result.bindToOption {ε α β : Type} (x : Except ε α) (f : α → Except ε β) :
    (x >>= f).toOption = x.toOption.bind fun a => (f a).toOption := by
  cases x <;> rfl

theorem Result.okToOption {ε α : Type} {x : Except ε α} {a : α} :
    x.toOption = some a ↔ x = .ok a := by
  cases x <;> simp [Except.toOption]

namespace Dimension

def given (dimensions : List Dimension) : List String := dimensions.filterMap (·.name)

def unnamed (dimensions : List Dimension) : List Float :=
  (dimensions.filter (·.name.isNone)).map (·.value)

def value? (dimensions : List Dimension) (name : String) : Option Float :=
  (dimensions.find? (·.name == some name)).map (·.value)

structure Fits (names : List String) (dimensions : List Dimension) : Prop where
  each : dimensions.length = names.length
  known : ∀ name ∈ given dimensions, name ∈ names
  once : (given dimensions).Nodup

/-- What components come to: those that are named to their values, the others, in order, to the
values without a name, in order. -/
structure Assigned (names : List String) (dimensions : List Dimension) (values : List Float) :
    Prop where
  each : values.length = names.length
  named : ∀ name x, ⟨some name, x⟩ ∈ dimensions → (name, x) ∈ names.zip values
  others : ((names.zip values).filter (·.1 ∉ given dimensions)).map (·.2) = unnamed dimensions

section Entries

variable {dimensions : List Dimension} {name : String} {x : Float}

theorem lengthSplit (dimensions : List Dimension) :
    dimensions.length = (given dimensions).length + (unnamed dimensions).length := by
  induction dimensions with
  | nil => rfl
  | cons d rest ih =>
    obtain ⟨name, x⟩ := d
    cases name <;> simp_all [given, unnamed] <;> omega

theorem valueNone : value? dimensions name = none ↔ name ∉ given dimensions := by
  simp [value?, given, List.find?_eq_none]

theorem valueGiven (once : (given dimensions).Nodup) :
    value? dimensions name = some x ↔ ⟨some name, x⟩ ∈ dimensions := by
  induction dimensions with
  | nil => simp [value?]
  | cons d rest ih =>
    obtain ⟨label, y⟩ := d
    cases label with
    | none => simpa [value?] using ih once
    | some label =>
      obtain ⟨fresh, once⟩ := List.nodup_cons.mp once
      by_cases same : label = name
      · subst same
        have absent : ⟨some label, x⟩ ∉ rest := fun member =>
          fresh (List.mem_filterMap.mpr ⟨_, member, rfl⟩)
        simp [value?, absent, eq_comm]
      · have other : ¬name = label := fun equal => same equal.symm
        simpa [value?, same, other] using ih once

theorem valueUnnamed : value? (⟨none, x⟩ :: dimensions) = value? dimensions := by
  funext n
  simp [value?]

theorem valueNamed {n : String} : value? (⟨some name, x⟩ :: dimensions) n =
    if name = n then some x else value? dimensions n := by
  by_cases same : name = n <;> simp [value?, same]

end Entries

inductive Fills : Slots → List Float → List Float → Prop where
  | done : Fills [] [] []
  | taken {x : Float} {slots : Slots} {others values : List Float}
      (rest : Fills slots others values) : Fills (some x :: slots) others (x :: values)
  | free {x : Float} {slots : Slots} {others values : List Float}
      (rest : Fills slots others values) : Fills (none :: slots) (x :: others) (x :: values)

def free (slots : Slots) : Nat := slots.countP (·.isNone)

section Slots

variable {slots : Slots} {others values : List Float}

theorem fillsFilled (fills : Fills slots others values) :
    fill slots others = (values.map some, []) := by
  induction fills with
  | done => rfl
  | taken _ ih => simp [fill, ih]
  | free _ ih => simp [fill, ih]

/- Whatever is left over when all slots are filled was not needed. -/
theorem filledFills (filled : (fill slots others).1 = values.map some) :
    ∃ used, others = used ++ (fill slots others).2 ∧ Fills slots used values := by
  induction slots generalizing others values with
  | nil =>
    cases List.map_eq_nil_iff.mp filled.symm
    exact ⟨[], rfl, .done⟩
  | cons slot slots ih =>
    cases values with
    | nil => cases slot <;> cases others <;> cases filled
    | cons value values =>
      cases slot with
      | some x =>
        obtain ⟨same, rest⟩ := List.cons.inj filled
        cases same
        obtain ⟨used, split, fills⟩ := ih rest
        exact ⟨used, split, .taken fills⟩
      | none =>
        cases others with
        | nil => cases filled
        | cons x others =>
          obtain ⟨same, rest⟩ := List.cons.inj filled
          cases same
          obtain ⟨used, split, fills⟩ := ih rest
          exact ⟨value :: used, congrArg (value :: ·) split, .free fills⟩

theorem fillsFree (fills : Fills slots others values) : free slots = others.length := by
  induction fills with
  | done => rfl
  | taken _ ih => simpa [free] using ih
  | free _ ih => simpa [free] using ih

theorem fillsEach (fills : Fills slots others values) : values.length = slots.length := by
  induction fills with
  | done => rfl
  | taken _ ih => simpa using ih
  | free _ ih => simpa using ih

theorem fillLength (slots : Slots) (others : List Float) :
    (fill slots others).1.length = slots.length := by
  induction slots generalizing others with
  | nil => rfl
  | cons slot slots ih =>
    cases slot with
    | some x => simp [fill, ih]
    | none => cases others <;> simp [fill, ih]

theorem fillsExactly : Fills slots others values ↔
    (fill slots others).1 = values.map some ∧ (fill slots others).2 = [] := by
  constructor
  · intro fills
    rw [fillsFilled fills]
    exact ⟨rfl, rfl⟩
  · intro parts
    obtain ⟨filled, nothing⟩ := parts
    obtain ⟨used, split, fills⟩ := filledFills filled
    rw [nothing, List.append_nil] at split
    exact split ▸ fills

theorem fillsWithin : Fills slots others values ↔
    (fill slots others).1 = values.map some ∧ others.length ≤ free slots := by
  constructor
  · intro fills
    rw [fillsFilled fills, fillsFree fills]
    exact ⟨rfl, Nat.le_refl _⟩
  · intro parts
    obtain ⟨filled, room⟩ := parts
    obtain ⟨used, split, fills⟩ := filledFills filled
    refine fillsExactly.mpr ⟨filled, List.length_eq_zero_iff.mp ?_⟩
    have lengths := congrArg List.length split
    rw [List.length_append, ← fillsFree fills] at lengths
    omega

theorem freeFills (enough : free slots = others.length) : ∃ values, Fills slots others values := by
  induction slots generalizing others with
  | nil =>
    cases List.length_eq_zero_iff.mp enough.symm
    exact ⟨[], .done⟩
  | cons slot slots ih =>
    cases slot with
    | some x =>
      obtain ⟨values, fills⟩ := ih (by simpa [free] using enough)
      exact ⟨x :: values, .taken fills⟩
    | none =>
      cases others with
      | nil => simp [free] at enough
      | cons x others =>
        obtain ⟨values, fills⟩ := ih (by simpa [free] using enough)
        exact ⟨x :: values, .free fills⟩

theorem completeOk {names : List String} (each : names.length = slots.length) :
    complete names slots = .ok values ↔ slots = values.map some := by
  induction names generalizing slots values with
  | nil =>
    cases List.length_eq_zero_iff.mp each.symm
    cases values <;> simp [complete]
  | cons name names ih =>
    cases slots with
    | nil => cases each
    | cons slot slots =>
      cases slot with
      | none => cases values <;> simp [complete]
      | some x =>
        rw [complete]
        simp only [Result.bindOk, ih (Nat.succ.inj each), pure, Except.pure, Except.ok.injEq]
        cases values with
        | nil => simp
        | cons value values => simp [and_comm]

theorem fillsTaken {x y : Float} : Fills (some x :: slots) others (y :: values) ↔
    y = x ∧ Fills slots others values := by
  constructor
  · intro fills
    cases fills with
    | taken rest => exact ⟨rfl, rest⟩
  · intro parts
    obtain ⟨rfl, rest⟩ := parts
    exact .taken rest

theorem fillsPlaced {x : Float} : Fills (none :: slots) others (x :: values) ↔
    ∃ more, others = x :: more ∧ Fills slots more values := by
  constructor
  · intro fills
    cases fills with
    | free rest => exact ⟨_, rfl, rest⟩
  · intro parts
    obtain ⟨more, rfl, rest⟩ := parts
    exact .free rest

/- Slots that are told by their names have what is beside the names: what was known of them, and
the others in order where nothing was. -/
theorem fillsZip {names : List String} {f : String → Option Float} :
    Fills (names.map f) others values ↔ values.length = names.length ∧
      (∀ name x, (name, x) ∈ names.zip values → ∀ y, f name = some y → x = y) ∧
      ((names.zip values).filter (fun p => (f p.1).isNone)).map (·.2) = others := by
  induction names generalizing others values with
  | nil =>
    constructor
    · intro fills
      cases fills
      simp
    · intro parts
      obtain ⟨each, _, rfl⟩ := parts
      cases List.length_eq_zero_iff.mp each
      exact .done
  | cons name names ih =>
    cases values with
    | nil =>
      constructor
      · intro fills
        cases fillsEach fills
      · intro parts
        cases parts.1
    | cons x values =>
      cases known : f name with
      | some y =>
        rw [List.map_cons, known, fillsTaken, ih]
        simp only [List.length_cons, Nat.add_right_cancel_iff, List.zip_cons_cons, List.mem_cons,
          Prod.mk.injEq, or_imp, and_imp, forall_and, forall_eq_apply_imp_iff, forall_eq, known,
          Option.some.injEq, forall_eq', Option.isNone_some, Bool.false_eq_true,
          not_false_eq_true, List.filter_cons_of_neg]
        constructor
        · intro parts
          obtain ⟨same, each, told, others⟩ := parts
          exact ⟨each, ⟨same, told⟩, others⟩
        · intro parts
          obtain ⟨each, ⟨same, told⟩, others⟩ := parts
          exact ⟨same, each, told, others⟩
      | none =>
        rw [List.map_cons, known, fillsPlaced]
        simp only [ih, ↓existsAndEq, and_true, List.length_cons, Nat.add_right_cancel_iff,
          List.zip_cons_cons, List.mem_cons, Prod.mk.injEq, or_imp, and_imp, forall_and,
          forall_eq_apply_imp_iff, forall_eq, known, reduceCtorEq, IsEmpty.forall_iff,
          implies_true, true_and, Option.isNone_none, List.filter_cons_of_pos, List.map_cons]
        constructor
        · intro parts
          obtain ⟨placed, each, told⟩ := parts
          exact ⟨each, told, placed.symm⟩
        · intro parts
          obtain ⟨each, told, placed⟩ := parts
          exact ⟨placed.symm, each, told⟩

end Slots

section Places
open Function (update)

variable {names : List String} {dimensions : List Dimension}

structure Fresh (names : List String) (f : String → Option Float) (dimensions : List Dimension) :
    Prop where
  once : (given dimensions).Nodup
  known : ∀ name ∈ given dimensions, name ∈ names
  empty : ∀ name ∈ given dimensions, f name = none

theorem freshNamed {f : String → Option Float} {name : String} {x : Float} :
    Fresh names f (⟨some name, x⟩ :: dimensions) ↔ name ∈ names ∧ f name = none ∧
      Fresh names (update f name (some x)) dimensions := by
  constructor
  · intro fresh
    obtain ⟨apart, once⟩ := List.nodup_cons.mp fresh.once
    obtain ⟨known, others⟩ := List.forall_mem_cons.mp fresh.known
    obtain ⟨empty, rest⟩ := List.forall_mem_cons.mp fresh.empty
    refine ⟨known, empty, once, others, fun other member => ?_⟩
    have differs : other ≠ name := fun same => apart (same ▸ member)
    rw [Function.update_of_ne differs]
    exact rest other member
  · intro parts
    obtain ⟨known, empty, fresh⟩ := parts
    have apart : ∀ other ∈ given dimensions, other ≠ name := by
      intro other member same
      have taken := fresh.empty other member
      rw [same, Function.update_self] at taken
      cases taken
    refine ⟨List.nodup_cons.mpr ⟨fun member => apart name member rfl, fresh.once⟩,
      List.forall_mem_cons.mpr ⟨known, fresh.known⟩,
      List.forall_mem_cons.mpr ⟨empty, fun other member => ?_⟩⟩
    rw [← fresh.empty other member, Function.update_of_ne (apart other member)]

/- The slots are those of the names, so that a name is found once and its slot is its own. -/
theorem placeMapped (distinct : names.Nodup) {f : String → Option Float} {slots : Slots}
    {others : List Float} : place names (names.map f) dimensions = .ok (slots, others) ↔
      Fresh names f dimensions ∧ slots = names.map (fun n => (f n).or (value? dimensions n)) ∧
        others = unnamed dimensions := by
  induction dimensions generalizing f slots others with
  | nil =>
    have fresh : Fresh names f [] := ⟨List.nodup_nil, by simp [given], by simp [given]⟩
    simp [place, fresh, value?, unnamed, eq_comm]
  | cons d rest ih =>
    obtain ⟨label, x⟩ := d
    cases label with
    | none =>
      have fresh : Fresh names f (⟨none, x⟩ :: rest) ↔ Fresh names f rest :=
        ⟨fun h => ⟨h.once, h.known, h.empty⟩, fun h => ⟨h.once, h.known, h.empty⟩⟩
      rw [place, Result.bindOk, fresh, valueUnnamed]
      constructor
      · intro ok
        obtain ⟨⟨placed, more⟩, here, last⟩ := ok
        cases last
        obtain ⟨fits, rfl, rfl⟩ := ih.mp here
        exact ⟨fits, rfl, rfl⟩
      · intro parts
        obtain ⟨fits, rfl, rfl⟩ := parts
        exact ⟨(_, unnamed rest), ih.mpr ⟨fits, rfl, rfl⟩, rfl⟩
    | some name =>
      rw [place, freshNamed]
      cases found : names.idxOf? name with
      | none =>
        have absent : name ∉ names := List.idxOf?_eq_none_iff.mp found
        simp [absent]
      | some i =>
        obtain ⟨inside, here, _⟩ := List.idxOf?_eq_some_iff.mp found
        have member : name ∈ names := here ▸ List.getElem_mem inside
        have index : names.idxOf name = i := by rw [List.idxOf_eq_getD_idxOf?, found]; rfl
        have current : (names.map f).getD i none = f name := by simp [inside, here]
        have next : (names.map f).set i (some x) = names.map (update f name (some x)) := by
          rw [distinct.map_update, if_pos member, index]
        simp only [current, next]
        cases taken : f name with
        | some y => simp
        | none =>
          have values : ∀ n, (update f name (some x) n).or (value? rest n) =
              (f n).or (value? (⟨some name, x⟩ :: rest) n) := by
            intro n
            rw [valueNamed]
            by_cases same : n = name
            · rw [same, Function.update_self, taken, if_pos rfl]
              rfl
            · rw [Function.update_of_ne same, if_neg (Ne.symm same)]
          simp [ih, member, values, unnamed]

/- The names that are given are as many as the slots that they take. -/
theorem freeCount (distinct : names.Nodup) (once : (given dimensions).Nodup)
    (known : ∀ name ∈ given dimensions, name ∈ names) :
    free (names.map (value? dimensions)) + (given dimensions).length = names.length := by
  have taken : names.countP (· ∈ given dimensions) = (given dimensions).length := by
    rw [List.countP_eq_length_filter]
    refine ((List.perm_ext_iff_of_nodup (distinct.filter _) once).mpr fun name => ?_).length_eq
    simpa using known name
  have left : free (names.map (value? dimensions)) =
      names.countP (fun n => ¬(decide (n ∈ given dimensions)) = true) := by
    rw [free, List.countP_map]
    refine List.countP_congr fun name _ => ?_
    simp [valueNone]
  rw [left, ← taken, Nat.add_comm, ← List.length_eq_countP_add_countP]

theorem assignSteps {values : List Float} : assign names dimensions = .ok values ↔
    dimensions.length ≤ names.length ∧ ∃ slots others,
      place names (List.replicate names.length none) dimensions = .ok (slots, others) ∧
        complete names (fill slots others).1 = .ok values := by
  unfold assign
  by_cases long : names.length < dimensions.length
  · have room : ¬dimensions.length ≤ names.length := Nat.not_le.mpr long
    simp [long, room, bind, Except.bind]
  · rw [if_neg long]
    simp only [Result.bindOk, Prod.exists]
    simp only [Nat.le_of_not_lt long, true_and]

theorem assignFills (distinct : names.Nodup) {values : List Float} :
    assign names dimensions = .ok values ↔ Fresh names (fun _ => none) dimensions ∧
      Fills (names.map (value? dimensions)) (unnamed dimensions) values := by
  have start : List.replicate names.length none = names.map (fun _ => (none : Option Float)) :=
    List.map_const'.symm
  have split := lengthSplit dimensions
  rw [assignSteps, start]
  constructor
  · intro ok
    obtain ⟨room, slots, others, placed, full⟩ := ok
    obtain ⟨fresh, rfl, rfl⟩ := (placeMapped distinct).mp placed
    have count := freeCount distinct fresh.once fresh.known
    rw [completeOk (by rw [fillLength, List.length_map])] at full
    refine ⟨fresh, fillsWithin.mpr ⟨full, ?_⟩⟩
    omega
  · intro parts
    obtain ⟨fresh, fills⟩ := parts
    have count := freeCount distinct fresh.once fresh.known
    have free := fillsFree fills
    refine ⟨by omega, _, _, (placeMapped distinct).mpr ⟨fresh, rfl, rfl⟩, ?_⟩
    rw [completeOk (by rw [fillLength, List.length_map])]
    exact (fillsExactly.mp fills).1

theorem fitsFresh (distinct : names.Nodup) : Fits names dimensions ↔
    Fresh names (fun _ => none) dimensions ∧
      ∃ values, Fills (names.map (value? dimensions)) (unnamed dimensions) values := by
  have split := lengthSplit dimensions
  constructor
  · intro fits
    have count := freeCount distinct fits.once fits.known
    have each := fits.each
    exact ⟨⟨fits.once, fits.known, fun _ _ => rfl⟩, freeFills (by omega)⟩
  · intro parts
    obtain ⟨fresh, values, fills⟩ := parts
    have count := freeCount distinct fresh.once fresh.known
    have free := fillsFree fills
    exact ⟨by omega, fresh.known, fresh.once⟩

theorem fillsAssigned (distinct : names.Nodup) (fits : Fits names dimensions)
    {values : List Float} : Fills (names.map (value? dimensions)) (unnamed dimensions) values ↔
      Assigned names dimensions values := by
  have absent : ∀ name, (value? dimensions name).isNone = decide (name ∉ given dimensions) := by
    intro name
    rw [Bool.eq_iff_iff, Option.isNone_iff_eq_none, valueNone, decide_eq_true_eq]
  rw [fillsZip]
  simp only [absent, valueGiven fits.once]
  constructor
  · intro parts
    obtain ⟨each, told, others⟩ := parts
    refine ⟨each, fun name x member => ?_, others⟩
    have listed : name ∈ (names.zip values).map (·.1) := by
      rw [List.map_fst_zip (Nat.le_of_eq each.symm)]
      exact fits.known name (List.mem_filterMap.mpr ⟨_, member, rfl⟩)
    obtain ⟨⟨_, y⟩, beside, rfl⟩ := List.mem_map.mp listed
    exact told _ y beside x member ▸ beside
  · intro assigned
    refine ⟨assigned.each, fun name x beside y member => ?_, assigned.others⟩
    have once : ((names.zip values).map (·.1)).Nodup := by
      rwa [List.map_fst_zip (Nat.le_of_eq assigned.each.symm)]
    exact (Prod.mk.inj (List.inj_on_of_nodup_map once beside
      (assigned.named name y member) rfl)).2

theorem assignMoved (distinct : names.Nodup) {moved : List Dimension} {values : List Float}
    (perm : dimensions.Perm moved) (same : unnamed moved = unnamed dimensions)
    (ok : assign names dimensions = .ok values) : assign names moved = .ok values := by
  obtain ⟨fresh, fills⟩ := (assignFills distinct).mp ok
  have names' : (given dimensions).Perm (given moved) := perm.filterMap _
  have once : (given moved).Nodup := names'.nodup_iff.mp fresh.once
  have told : value? moved = value? dimensions := by
    funext name
    refine Option.ext fun x => ?_
    rw [valueGiven once, valueGiven fresh.once, perm.mem_iff]
  refine (assignFills distinct).mpr ⟨⟨once, fun name member => ?_, fun _ _ => rfl⟩, ?_⟩
  · exact fresh.known name (names'.mem_iff.mpr member)
  · rwa [told, same]

end Places
end Dimension

namespace EdgeInsets
open Dimension (Slots)

def toList (insets : EdgeInsets) : List Float :=
  [insets.top, insets.left, insets.bottom, insets.right]

def spread (d : Dimension) : List Dimension :=
  if d.name = some "horizontal" then [⟨some "left", d.value⟩, ⟨some "right", d.value⟩]
  else if d.name = some "vertical" then [⟨some "top", d.value⟩, ⟨some "bottom", d.value⟩]
  else [d]

section Edges

variable {slots : Slots} {dimensions : List Dimension}

theorem putPlaces {name label : String} {index : Nat} (found : edges.idxOf? name = some index)
    (x : Float) : ((put slots index x label).toOption.bind fun slots =>
      (Dimension.place edges slots dimensions).toOption) =
        (Dimension.place edges slots (⟨some name, x⟩ :: dimensions)).toOption := by
  rw [Dimension.place, found, put]
  dsimp only
  cases (slots.getD index none).isSome <;> rfl

theorem placeSpread : (place slots dimensions).toOption =
    (Dimension.place edges slots (dimensions.flatMap spread)).toOption := by
  induction dimensions generalizing slots with
  | nil => rfl
  | cons d rest ih =>
    obtain ⟨label, x⟩ := d
    cases label with
    | none =>
      have alone : spread ⟨none, x⟩ = [⟨none, x⟩] := rfl
      rw [List.flatMap_cons, alone, List.singleton_append, place, Dimension.place,
        Result.bindToOption, Result.bindToOption, ih]
    | some name =>
      rw [List.flatMap_cons, place]
      by_cases across : name = "horizontal"
      · have left : edges.idxOf? "left" = some 1 := by decide
        have right : edges.idxOf? "right" = some 3 := by decide
        subst across
        rw [if_pos rfl]
        simp only [Result.bindToOption, ih, putPlaces right, putPlaces left]
        rfl
      · rw [if_neg across]
        by_cases along : name = "vertical"
        · have top : edges.idxOf? "top" = some 0 := by decide
          have bottom : edges.idxOf? "bottom" = some 2 := by decide
          subst along
          rw [if_pos rfl]
          simp only [Result.bindToOption, ih, putPlaces bottom, putPlaces top]
          rfl
        · have alone : spread ⟨some name, x⟩ = [⟨some name, x⟩] := by
            simp [spread, across, along]
          rw [if_neg along, alone, List.singleton_append]
          cases found : edges.idxOf? name with
          | none =>
            rw [Dimension.place, found]
            rfl
          | some index =>
            simp only [Result.bindToOption, ih, putPlaces found]

theorem completeAlike (names : List String) (slots : Slots) :
    (complete names slots).toOption = (Dimension.complete names slots).toOption := by
  induction names generalizing slots with
  | nil => rfl
  | cons name names ih =>
    cases slots with
    | nil => rfl
    | cons slot slots =>
      cases slot with
      | none => rfl
      | some x => rw [complete, Dimension.complete, Result.bindToOption, Result.bindToOption, ih]

theorem completeOk {names : List String} {values : List Float}
    (each : names.length = slots.length) :
    complete names slots = .ok values ↔ slots = values.map some := by
  rw [← Result.okToOption, completeAlike, Result.okToOption, Dimension.completeOk each]

theorem insetsSteps (several : ∀ x, dimensions ≠ [⟨none, x⟩]) {insets : EdgeInsets} :
    ofDimensions dimensions = .ok insets ↔ ∃ slots others,
      place [none, none, none, none] dimensions = .ok (slots, others) ∧
        (Dimension.fill slots others).2 = [] ∧
        ∃ values, complete edges (Dimension.fill slots others).1 = .ok values ∧
          insets = ⟨values.getD 0 0.0, values.getD 1 0.0, values.getD 2 0.0, values.getD 3 0.0⟩ := by
  unfold ofDimensions
  split
  · rename_i x
    exact absurd rfl (several x)
  · rw [Result.bindOk, Prod.exists]
    refine exists_congr fun slots => exists_congr fun others => and_congr_right fun _ => ?_
    dsimp only
    cases (Dimension.fill slots others).2 with
    | cons x left => simp [bind, Except.bind]
    | nil =>
      rw [if_neg (by simp), Result.bindOk]
      simp only [true_and]
      refine exists_congr fun values => and_congr_right fun _ => ?_
      exact ⟨fun same => (Except.ok.inj same).symm, fun same => same ▸ rfl⟩

theorem insetsFills (several : ∀ x, dimensions ≠ [⟨none, x⟩]) {insets : EdgeInsets} :
    ofDimensions dimensions = .ok insets ↔
      Dimension.Fresh edges (fun _ => none) (dimensions.flatMap spread) ∧
        Dimension.Fills (edges.map (Dimension.value? (dimensions.flatMap spread)))
          (Dimension.unnamed (dimensions.flatMap spread)) insets.toList := by
  have distinct : edges.Nodup := by decide
  have placed : ∀ slots others, place [none, none, none, none] dimensions = .ok (slots, others) ↔
      Dimension.place edges (edges.map fun _ => none) (dimensions.flatMap spread) =
        .ok (slots, others) := by
    intro slots others
    rw [← Result.okToOption, ← Result.okToOption, placeSpread]
    rfl
  rw [insetsSteps several]
  simp only [placed, Dimension.placeMapped distinct]
  constructor
  · intro ok
    obtain ⟨slots, others, ⟨fresh, rfl, rfl⟩, nothing, values, full, rfl⟩ := ok
    rw [completeOk (by rw [Dimension.fillLength, List.length_map])] at full
    have fills := Dimension.fillsExactly.mpr ⟨full, nothing⟩
    refine ⟨fresh, ?_⟩
    match values, Dimension.fillsEach fills with
    | [a, b, c, d], _ => exact fills
  · intro parts
    obtain ⟨fresh, fills⟩ := parts
    obtain ⟨filled, nothing⟩ := Dimension.fillsExactly.mp fills
    refine ⟨_, _, ⟨fresh, rfl, rfl⟩, nothing, insets.toList, ?_, rfl⟩
    rw [completeOk (by rw [Dimension.fillLength, List.length_map])]
    exact filled

theorem insetsAssigned (several : ∀ x, dimensions ≠ [⟨none, x⟩]) :
    (ofDimensions dimensions).toOption.map toList =
      (Dimension.assign edges (dimensions.flatMap spread)).toOption := by
  have distinct : edges.Nodup := by decide
  refine Option.ext fun values => ?_
  rw [Option.map_eq_some_iff, Result.okToOption, Dimension.assignFills distinct]
  simp only [Result.okToOption, insetsFills several]
  constructor
  · intro ok
    obtain ⟨insets, parts, rfl⟩ := ok
    exact parts
  · intro parts
    have four := Dimension.fillsEach parts.2
    match values, four with
    | [a, b, c, d], _ => exact ⟨⟨a, b, c, d⟩, parts, rfl⟩

end Edges
end EdgeInsets

namespace Dimension

theorem assignedExactly {names : List String} (distinct : names.Nodup)
    (dimensions : List Dimension) :
    ((∃ values, assign names dimensions = .ok values) ↔ Fits names dimensions) ∧
    (∀ values, assign names dimensions = .ok values ↔
      Fits names dimensions ∧ Assigned names dimensions values) ∧
    (∀ moved, dimensions.Perm moved → unnamed moved = unnamed dimensions →
      ∀ values, assign names moved = .ok values ↔ assign names dimensions = .ok values) ∧
    ((∀ x, dimensions ≠ [⟨none, x⟩]) →
      (EdgeInsets.ofDimensions dimensions).toOption.map EdgeInsets.toList =
        (assign EdgeInsets.edges (dimensions.flatMap EdgeInsets.spread)).toOption) := by
  refine ⟨?_, fun values => ?_, fun moved perm same values => ?_, EdgeInsets.insetsAssigned⟩
  · rw [fitsFresh distinct]
    simp only [assignFills distinct, exists_and_left]
  · rw [assignFills distinct]
    constructor
    · intro parts
      obtain ⟨fresh, fills⟩ := parts
      have fits := (fitsFresh distinct).mpr ⟨fresh, values, fills⟩
      exact ⟨fits, (fillsAssigned distinct fits).mp fills⟩
    · intro parts
      obtain ⟨fits, assigned⟩ := parts
      exact ⟨((fitsFresh distinct).mp fits).1, (fillsAssigned distinct fits).mpr assigned⟩
  · exact ⟨assignMoved distinct perm.symm same.symm, assignMoved distinct perm same⟩

theorem rightAssigned : EdgeInsets.edges.Nodup ∧
    assign EdgeInsets.edges [⟨none, 1.0⟩, ⟨some "right", 4.0⟩, ⟨none, 2.0⟩, ⟨none, 3.0⟩] =
      .ok [1.0, 2.0, 3.0, 4.0] ∧
    assign EdgeInsets.edges [⟨some "right", 4.0⟩, ⟨none, 1.0⟩, ⟨none, 2.0⟩, ⟨none, 3.0⟩] =
      .ok [1.0, 2.0, 3.0, 4.0] ∧
    (EdgeInsets.ofDimensions [⟨some "vertical", 2.0⟩, ⟨none, 4.0⟩, ⟨none, 5.0⟩]).toOption.map
      EdgeInsets.toList = some [2.0, 4.0, 2.0, 5.0] := by
  have distinct : EdgeInsets.edges.Nodup := by decide
  obtain ⟨_, _, moved, _⟩ := assignedExactly distinct
    [⟨none, 1.0⟩, ⟨some "right", 4.0⟩, ⟨none, 2.0⟩, ⟨none, 3.0⟩]
  obtain ⟨_, _, _, edges⟩ := assignedExactly distinct
    [⟨some "vertical", 2.0⟩, ⟨none, 4.0⟩, ⟨none, 5.0⟩]
  refine ⟨distinct, by rfl, ?_, ?_⟩
  · exact (moved [⟨some "right", 4.0⟩, ⟨none, 1.0⟩, ⟨none, 2.0⟩, ⟨none, 3.0⟩]
      (.swap _ _ _) (by rfl) _).mpr (by rfl)
  · rw [edges (by simp)]
    rfl

end Dimension
end ViewForge
