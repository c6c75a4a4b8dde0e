import ViewForge.Proofs.Resolve.Layers

/-! What an element is set to, slot by slot. Properties are merged by their keys, and a key says
whether a control state was given; a property that is applied without one is applied for `normal`.
So there are two keys for the normal state of a control, and one for every other slot. -/
namespace ViewForge

namespace Property

def slot (p : Property) : PropertyPath × Option ControlState :=
  (p.description.path,
    p.description.setter.method?.map fun _ => p.controlState.getD .normal)

def spelling (p : Property) : (PropertyPath × Option ControlState) × Option ControlState :=
  (p.slot, p.controlState)

end Property

namespace PropertyTable

theorem insertPaths {table : PropertyTable} (apart : (table.map PropertyDescription.path).Nodup)
    (d : PropertyDescription) : ((table.insert d).map PropertyDescription.path).Nodup := by
  rw [insert, List.map_append, List.nodup_append]
  refine ⟨apart.sublist (List.filter_sublist.map _), List.nodup_singleton _, ?_⟩
  rintro path member _ last rfl
  obtain ⟨e, kept, same⟩ := List.mem_map.mp member
  cases List.mem_singleton.mp last
  exact bne_iff_ne.mp (List.mem_filter.mp kept).2 same

theorem buildPaths (entries : List TableEntry) :
    ((build entries).map PropertyDescription.path).Nodup := by
  have each : ∀ (ds : List PropertyDescription) (table : PropertyTable),
      (table.map PropertyDescription.path).Nodup →
      ((ds.foldl insert table).map PropertyDescription.path).Nodup := by
    intro ds
    induction ds with
    | nil => exact fun _ apart => apart
    | cons d rest ih => exact fun table apart => ih _ (insertPaths apart d)
  exact each _ [] List.nodup_nil

section Described

variable {table : PropertyTable} {p q : Property}

theorem describedKey (left : table.Describes p) (right : table.Describes q) :
    p.key = q.key ↔ p.spelling = q.spelling := by
  constructor
  · intro same
    rw [Describes, same] at left
    have found := Option.some.inj (left.symm.trans right)
    obtain ⟨description, state⟩ := Prod.mk.inj found
    rw [Property.spelling, Property.spelling, Property.slot, Property.slot, description, state]
  · intro same
    obtain ⟨slot, state⟩ := Prod.mk.inj same
    rw [Property.key, Property.key, state, (Prod.mk.inj slot).1]

/- Leaving the state out is the only other way of writing a slot, and it is for `normal`. -/
theorem describedSpelling (left : table.Describes p) (right : table.Describes q)
    (same : p.slot = q.slot) : p.controlState = q.controlState ∨
      (p.controlState = none ∧ q.controlState = some .normal) ∨
      (p.controlState = some .normal ∧ q.controlState = none) := by
  have state := (Prod.mk.inj same).2
  cases first : p.description.setter.method? with
  | none =>
    cases second : q.description.setter.method? with
    | none => exact .inl ((findAssigned left first).trans (findAssigned right second).symm)
    | some _ => simp [first, second] at state
  | some _ =>
    cases second : q.description.setter.method? with
    | none => simp [first, second] at state
    | some _ =>
      simp only [first, second, Option.map_some, Option.some.injEq] at state
      cases one : p.controlState <;> cases other : q.controlState <;>
        simp_all

/- Two properties of one slot are applied by the same statement, so the later one prevails. -/
theorem describedApply (apart : (table.map PropertyDescription.path).Nodup)
    (left : table.Describes p) (right : table.Describes q) (same : p.slot = q.slot)
    (target value : Code.Expr) : p.apply target value = q.apply target value := by
  obtain ⟨path, state⟩ := Prod.mk.inj same
  have description : p.description = q.description :=
    List.inj_on_of_nodup_map apart (findMem left) (findMem right) path
  unfold Property.apply
  rw [description] at state ⊢
  cases setter : q.description.setter with
  | assign => rfl
  | perState method =>
    simp only [setter, Setter.method?, Option.map_some, Option.some.injEq] at state
    rw [state]

end Described

end PropertyTable

theorem ElementKind.tablePaths (kind : ElementKind) :
    (kind.table.map PropertyDescription.path).Nodup := by
  cases kind with
  | widget w => exact PropertyTable.buildPaths w.entries
  | component _ => exact PropertyTable.buildPaths Widget.view.entries

namespace StyleScope

def UniformAt (written : List Property) (slot : PropertyPath × Option ControlState) : Prop :=
  ∀ p ∈ written, ∀ q ∈ written, p.slot = slot → q.slot = slot → p.controlState = q.controlState

/-- What is left of properties that are written one after the other. -/
structure Settles (written ps : List Property) : Prop where
  spelled : ∀ way, ps.filter (·.spelling = way) =
    (written.filter (·.spelling = way)).getLast?.toList
  twice : ∀ p ∈ ps, ∀ q ∈ ps, p.slot = q.slot → p.controlState = q.controlState ∨
    (p.controlState = none ∧ q.controlState = some .normal) ∨
    (p.controlState = some .normal ∧ q.controlState = none)
  alike : ∀ p ∈ ps, ∀ q ∈ ps, p.slot = q.slot →
    ∀ target value, p.apply target value = q.apply target value
  latest : ∀ slot, UniformAt written slot →
    ps.filter (·.slot = slot) = (written.filter (·.slot = slot)).getLast?.toList
  once : (ps.map Property.slot).Nodup ↔ ∀ slot, UniformAt written slot

theorem filterKey {ps : List Property} (distinct : (ps.map Property.key).Nodup) (key : String) :
    ps.filter (·.key == key) = (ps.find? (·.key == key)).toList := by
  induction ps with
  | nil => rfl
  | cons p rest ih =>
    obtain ⟨fresh, distinct⟩ := List.nodup_cons.mp distinct
    by_cases same : p.key = key
    · have none : rest.filter (·.key == key) = [] := List.filter_eq_nil_iff.mpr fun q member eq =>
        fresh (List.mem_map.mpr ⟨q, member, (eq_of_beq eq).trans same.symm⟩)
      simp [same, none]
    · simpa [same] using ih distinct

theorem lastMember {written : List Property} {p : Property} (kept : p ∈ lastOccurrences written) :
    p ∈ written := by
  obtain ⟨before, after, split, _⟩ := lastOccurrencesSplit kept
  rw [split]
  simp

def LeavesLast (written : List Property) (test : Property → Bool) : Prop :=
  (lastOccurrences written).filter test = (written.filter test).getLast?.toList

theorem leavesKey (written : List Property) (key : String) :
    LeavesLast written (·.key == key) := by
  rw [LeavesLast, filterKey (lastOccurrencesNodup written), lastOccurrencesFind,
    List.getLast?_eq_head?_reverse, ← List.filter_reverse, List.head?_filter]

theorem leavesNone {written : List Property} {test : Property → Bool}
    (none : ∀ p ∈ written, test p = false) : LeavesLast written test := by
  rw [LeavesLast, List.filter_eq_nil_iff.mpr fun p kept => by simp [none p (lastMember kept)],
    List.filter_eq_nil_iff.mpr fun p member => by simp [none p member]]
  rfl

/- It is the same for two tests that agree on all that is written. -/
theorem leavesCongr {written : List Property} {test other : Property → Bool}
    (same : ∀ p ∈ written, test p = other p) (leaves : LeavesLast written other) :
    LeavesLast written test := by
  rw [LeavesLast, List.filter_congr same,
    List.filter_congr fun p kept => same p (lastMember kept)]
  exact leaves

section Written

variable {table : PropertyTable} {written : List Property}
  (described : ∀ p ∈ written, table.Describes p)

include described

theorem leavesSpelling (way : (PropertyPath × Option ControlState) × Option ControlState) :
    LeavesLast written (·.spelling = way) := by
  by_cases some : ∃ w ∈ written, w.spelling = way
  · obtain ⟨w, member, rfl⟩ := some
    refine leavesCongr (fun p inside => ?_) (leavesKey written w.key)
    rw [Bool.eq_iff_iff, decide_eq_true_iff, beq_iff_eq]
    exact (PropertyTable.describedKey (described p inside) (described w member)).symm
  · exact leavesNone fun p member => decide_eq_false fun same => some ⟨p, member, same⟩

theorem leavesSlot {slot : PropertyPath × Option ControlState} (uniform : UniformAt written slot) :
    LeavesLast written (·.slot = slot) := by
  by_cases some : ∃ w ∈ written, w.slot = slot
  · obtain ⟨w, member, here⟩ := some
    refine leavesCongr (fun p inside => ?_) (leavesSpelling described (slot, w.controlState))
    refine decide_eq_decide.mpr ⟨fun there => ?_, fun same => (Prod.mk.inj same).1⟩
    exact Prod.ext there (uniform p inside w member there here)
  · exact leavesNone fun p member => decide_eq_false fun same => some ⟨p, member, same⟩

/- Every way to spell a slot that was written is left. -/
theorem spellingLeft {p : Property} (member : p ∈ written) :
    ∃ q ∈ lastOccurrences written, q.spelling = p.spelling := by
  have key := (lastOccurrencesKeys written p.key).mpr (List.mem_map_of_mem member)
  obtain ⟨q, kept, same⟩ := List.mem_map.mp key
  exact ⟨q, kept, (PropertyTable.describedKey (described q (lastMember kept))
    (described p member)).mp same⟩

theorem slotsOnce : ((lastOccurrences written).map Property.slot).Nodup ↔
    ∀ slot, UniformAt written slot := by
  have distinct := lastOccurrencesNodup written
  constructor
  · intro once slot p first q second here there
    obtain ⟨x, kept, same⟩ := spellingLeft described first
    obtain ⟨y, also, equal⟩ := spellingLeft described second
    obtain ⟨left, state⟩ := Prod.mk.inj same
    obtain ⟨right, control⟩ := Prod.mk.inj equal
    have one := List.inj_on_of_nodup_map once kept also
      (left.trans (here.trans (there.symm.trans right.symm)))
    rw [← state, ← control, one]
  · intro uniform
    refine List.Nodup.map_on (fun p kept q also same => ?_) (List.Nodup.of_map _ distinct)
    have first := lastMember kept
    have second := lastMember also
    refine List.inj_on_of_nodup_map distinct kept also ?_
    exact (PropertyTable.describedKey (described p first) (described q second)).mpr
      (Prod.ext same (uniform q.slot p first q second same rfl))

theorem settlesLast (apart : (table.map PropertyDescription.path).Nodup) :
    Settles written (lastOccurrences written) where
  spelled := leavesSpelling described
  twice p kept q also := PropertyTable.describedSpelling (described p (lastMember kept))
    (described q (lastMember also))
  alike p kept q also := PropertyTable.describedApply apart (described p (lastMember kept))
    (described q (lastMember also))
  latest _ uniform := leavesSlot described uniform
  once := slotsOnce described

end Written

theorem slotsSettled {scope : StyleScope} (read : scope.IsRead) (coherent : scope.Coherent)
    {attributes : List (String × String)} {e : Element}
    (given : Element.Deserialized attributes e) {cache next : StyleCache}
    (reached : scope.Reached cache) {ps : List Property}
    (ok : (scope.resolve e).outcome cache = (.ok ps, next)) :
    ∃ layers, List.Forall₂ (scope.Layer e.kind) e.styles layers ∧
      Settles (layers.flatten ++ e.properties) ps := by
  unfold resolve at ok
  obtain ⟨styled, between, styles, last⟩ := Task.bindGives.mp ok
  cases last
  obtain ⟨layers, each, rfl⟩ := layersStacked coherent []
    (reachedSound (coherentKeyed coherent) reached) styles
  rw [List.nil_append, mergeAllLast]
  refine ⟨layers, each, settlesLast (fun p member => ?_) e.kind.tablePaths⟩
  rcases List.mem_append.mp member with styled | own
  · exact layersDescribed read each p styled
  · exact (Element.deserializedWritten given).described p own

section Tint

def tintSheet : Markup.Node :=
  { name := "styleGroup", attributes := [("name", "General")], children := [
      { name := "ButtonStyle",
        attributes := [("name", "tinted"), ("titleColor.normal", ":accent"), ("alpha", "0.5")] }] }

def tintScope : StyleScope := { groups := [("General", sheetGroup tintSheet)] }

def tintNode (name : String) : Markup.Node :=
  { name := "Button", attributes := [("style", ":General:tinted"), (name, "#ff0000")] }

def tintRead (name : String) : Result Element × ReadState :=
  (Element.read (tintNode name)).outcome { platform := .iOS, path := "Page.ui.xml" }

def tintButton (name : String) : Element :=
  (tintRead name).1.toOption.getD (Element.bare (.widget .view) Element.rootId)

def tintSlots (name : String) : Result (List (PropertyPath × Option ControlState)) :=
  ((tintScope.resolve (tintButton name)).outcome []).1.map (·.map Property.slot)

theorem tintScopeRead : tintScope.IsRead where
  groups name g member := by
    obtain ⟨_, same⟩ := Prod.mk.inj (List.mem_singleton.mp member)
    rw [same]
    exact StyleGroup.readRead (Result.okGetD (by decide +kernel) _)
  own g same := by cases same

theorem tintCoherent : tintScope.Coherent where
  named name g found := by
    obtain ⟨named, same⟩ := Prod.mk.inj (List.mem_singleton.mp (Ordered.memOfLookup found))
    rw [named, same]
    decide +kernel
  apart g same := by cases same

theorem tintGiven {name : String} (read : (tintRead name).1.isOk = true)
    (other : name ≠ "style") :
    Element.Deserialized (tintNode name).attributes (tintButton name) :=
  .element (.mk (by simpa [tintNode] using other.symm) (by simp [tintNode]))
    (Result.outcomeOk (Result.okGetD read _))

theorem tintComputed : (tintRead "titleColor.normal").1.isOk = true ∧
    (tintRead "titleColor").1.isOk = true ∧
    tintSlots "titleColor.normal" =
      .ok [(⟨[], "alpha"⟩, none), (⟨[], "titleColor"⟩, some .normal)] ∧
    tintSlots "titleColor" = .ok [(⟨[], "titleColor"⟩, some .normal), (⟨[], "alpha"⟩, none),
      (⟨[], "titleColor"⟩, some .normal)] := by decide +kernel

theorem tintSettled : tintScope.IsRead ∧ tintScope.Coherent ∧ tintScope.Reached [] ∧
    Element.Deserialized (tintNode "titleColor.normal").attributes
      (tintButton "titleColor.normal") ∧
    ∃ ps next, (tintScope.resolve (tintButton "titleColor.normal")).outcome [] = (.ok ps, next) ∧
      (ps.map Property.slot).Nodup ∧
      ∃ layers, List.Forall₂ (tintScope.Layer (tintButton "titleColor.normal").kind)
          (tintButton "titleColor.normal").styles layers ∧
        (∀ slot, UniformAt (layers.flatten ++ (tintButton "titleColor.normal").properties) slot) ∧
        Settles (layers.flatten ++ (tintButton "titleColor.normal").properties) ps := by
  obtain ⟨read, _, slots, _⟩ := tintComputed
  have given := tintGiven read (by decide)
  obtain ⟨ps, ok, listed⟩ := Result.mapOk.mp slots
  have run := Result.outcomeOk ok
  have distinct : (ps.map Property.slot).Nodup := by
    rw [listed]
    decide
  obtain ⟨layers, each, settles⟩ := slotsSettled tintScopeRead tintCoherent given .fresh run
  exact ⟨tintScopeRead, tintCoherent, .fresh, given, ps, _, run, distinct, layers, each,
    settles.once.mp distinct, settles⟩

/- Of two names for one slot the style and the element use one each, and both colors are left. -/
theorem slotTwice : Element.Deserialized (tintNode "titleColor").attributes
      (tintButton "titleColor") ∧
    ∃ ps next, (tintScope.resolve (tintButton "titleColor")).outcome [] = (.ok ps, next) ∧
      ¬ (ps.map Property.slot).Nodup := by
  obtain ⟨_, read, _, slots⟩ := tintComputed
  obtain ⟨ps, ok, listed⟩ := Result.mapOk.mp slots
  refine ⟨tintGiven read (by decide), ps, _, Result.outcomeOk ok, ?_⟩
  rw [listed]
  decide

end Tint

end StyleScope

end ViewForge
