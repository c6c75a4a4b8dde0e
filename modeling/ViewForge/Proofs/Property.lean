import Mathlib.Data.List.Nodup
import ViewForge.Proofs.Value
import ViewForge.Style.Basic

/-! Properties that are read: their keys are the names of their attributes, and what they are bound
to is a value or a state variable, in styles a value. -/
namespace ViewForge

theorem Text.cutFirstCharsJoined {separator : Char} {cs before after : List Char}
    (found : cutFirstChars? separator cs = some (before, after)) :
    cs = before ++ separator :: after := by
  induction cs generalizing before with
  | nil => cases found
  | cons c rest ih =>
    rw [cutFirstChars?] at found
    split at found
    · rename_i same
      cases found
      rw [same, List.nil_append]
    · obtain ⟨⟨b, a⟩, inner, same⟩ := Option.map_eq_some_iff.mp found
      cases same
      rw [List.cons_append, ← ih inner]

theorem Text.cutFirstCharsAppend {separator : Char} {before : List Char}
    (plain : separator ∉ before) (after : List Char) :
    cutFirstChars? separator (before ++ separator :: after) = some (before, after) := by
  induction before with
  | nil => rw [List.nil_append, cutFirstChars?, if_pos rfl]
  | cons c rest ih =>
    rw [List.mem_cons, not_or] at plain
    rw [List.cons_append, cutFirstChars?, if_neg (Ne.symm plain.1), ih plain.2, Option.map_some]

theorem Text.cutLastJoined {separator : Char} {s before after : String}
    (found : cutLast? separator s = some (before, after)) :
    s.toList = before.toList ++ separator :: after.toList := by
  obtain ⟨⟨last, first⟩, cut, same⟩ := Option.map_eq_some_iff.mp found
  cases same
  have joined := congrArg List.reverse (cutFirstCharsJoined cut)
  simpa using joined

namespace Property

def Bound (p : Property) : Prop := (∃ v, p.binding = .value v) ∨ ∃ name, p.binding = .state name

def IsOutside (p : Property) : Prop := "state" ∉ p.description.path.scope

end Property

namespace PropertyTable

theorem memBuild {entries : List TableEntry} {d : PropertyDescription}
    (member : d ∈ build entries) : d ∈ describeAll [] entries := by
  have each : ∀ (ds : List PropertyDescription) (table : PropertyTable),
      d ∈ ds.foldl insert table → d ∈ table ∨ d ∈ ds := by
    intro ds
    induction ds with
    | nil => exact fun _ inside => .inl inside
    | cons first rest ih =>
      intro table inside
      rcases ih _ inside with before | later
      · rcases List.mem_append.mp before with old | new
        · exact .inl (List.mem_filter.mp old).1
        · exact .inr (List.mem_singleton.mp new ▸ List.mem_cons_self)
      · exact .inr (List.mem_cons_of_mem _ later)
  exact (each _ [] member).resolve_left List.not_mem_nil

theorem findKey {table : PropertyTable} {name : String} {d : PropertyDescription}
    {state : Option ControlState} (found : table.find? name = some (d, state))
    (binding : Binding) : (Property.mk d state binding).key = name := by
  unfold find? at found
  split at found
  · rename_i known
    cases found
    simpa [Property.key] using List.find?_some known
  · obtain ⟨⟨base, last⟩, cut, found⟩ := Option.bind_eq_some_iff.mp found
    obtain ⟨control, named, found⟩ := Option.bind_eq_some_iff.mp found
    obtain ⟨description, known, same⟩ := Option.bind_eq_some_iff.mp found
    cases same
    have base : d.path.flatten = base := by
      have matching := List.find?_some known
      simp only [Bool.and_eq_true, beq_iff_eq] at matching
      exact matching.2
    have last : control.name = last := by simpa using List.find?_some named
    apply String.toList_injective
    rw [Text.cutLastJoined cut]
    simp [Property.key, base, last]

theorem findMem {table : PropertyTable} {name : String} {d : PropertyDescription}
    {state : Option ControlState} (found : table.find? name = some (d, state)) : d ∈ table := by
  unfold find? at found
  split at found
  · rename_i known
    cases found
    exact List.mem_of_find?_eq_some known
  · obtain ⟨_, _, found⟩ := Option.bind_eq_some_iff.mp found
    obtain ⟨_, _, found⟩ := Option.bind_eq_some_iff.mp found
    obtain ⟨description, known, same⟩ := Option.bind_eq_some_iff.mp found
    cases same
    exact List.mem_of_find?_eq_some known

/- Only what a method sets is found with a control state at the end of its name. -/
theorem findAssigned {table : PropertyTable} {name : String} {d : PropertyDescription}
    {state : Option ControlState} (found : table.find? name = some (d, state))
    (assigned : d.setter.method? = none) : state = none := by
  unfold find? at found
  split at found
  · cases found
    rfl
  · obtain ⟨_, _, found⟩ := Option.bind_eq_some_iff.mp found
    obtain ⟨_, _, found⟩ := Option.bind_eq_some_iff.mp found
    obtain ⟨description, known, same⟩ := Option.bind_eq_some_iff.mp found
    cases same
    have matching := List.find?_some known
    have method := (Bool.and_eq_true_iff.mp matching).1
    rw [assigned] at method
    cases method

theorem propertyRead {table : PropertyTable} {name raw : String} {p : Property}
    (ok : table.property name raw = .ok (some p)) :
    p.key = name ∧ p.Bound ∧ p.description ∈ table := by
  unfold property at ok
  split at ok
  · cases ok
  · rename_i d state found
    obtain ⟨binding, bound, same⟩ := Result.mapOk.mp ok
    cases same
    refine ⟨findKey found binding, ?_, findMem found⟩
    unfold PropertyDescription.bind at bound
    split at bound
    · cases bound
      exact .inr ⟨_, rfl⟩
    · obtain ⟨v, _, same⟩ := Result.mapOk.mp bound
      exact .inl ⟨v, same.symm⟩

theorem propertyFails {table : PropertyTable} {name raw : String} {e : Error}
    (failed : table.property name raw = .error e) : ∃ value type, e = .unknownValue value type := by
  unfold property at failed
  split at failed
  · cases failed
  · have unbound := Result.mapError.mp failed
    unfold PropertyDescription.bind at unbound
    split at unbound
    · cases unbound
    · exact ValueType.parseFails (Result.mapError.mp unbound)

end PropertyTable

theorem Widget.tableOutside {w : Widget} {d : PropertyDescription} (member : d ∈ w.table) :
    "state" ∉ d.path.scope := by
  have listed : ((PropertyTable.describeAll [] w.entries).all fun d =>
      !d.path.scope.contains "state") = true := by
    cases w <;> decide +kernel
  simpa using List.all_eq_true.mp listed d (PropertyTable.memBuild member)

theorem StyleKind.tableOutside {kind : StyleKind} {d : PropertyDescription}
    (member : d ∈ kind.table) : "state" ∉ d.path.scope := by
  cases kind with
  | view w => exact Widget.tableOutside member
  | attributedText =>
    have listed : (attributedTextTable.all fun d => !d.path.scope.contains "state") = true := by
      decide +kernel
    simpa using List.all_eq_true.mp listed d member

def StyleName.IsPlain : StyleName → Prop
  | inGroup name => ':' ∉ name.toList
  | qualified group name => ':' ∉ group.toList ∧ ':' ∉ name.toList

theorem StyleName.parsePlain {raw : String} {name : StyleName} (ok : parse raw = .ok name) :
    name.IsPlain := by
  have part : ∀ {cs : List Char}, isPart cs = true → ':' ∉ (String.ofList cs).toList := by
    intro cs whole colon
    rw [String.toList_ofList] at colon
    have letter := List.all_eq_true.mp (Bool.and_eq_true_iff.mp whole).2 ':' colon
    exact absurd letter (by decide)
  unfold parse at ok
  simp only at ok
  split at ok
  · split at ok
    · split at ok
      · rename_i parts
        obtain ⟨group, name⟩ := Bool.and_eq_true_iff.mp parts
        cases ok
        exact ⟨part group, part name⟩
      · cases ok
    · cases ok
  · split at ok
    · rename_i whole
      cases ok
      exact part whole
    · cases ok

namespace Style

theorem readPropertiesFound {kind : StyleKind} {name : String}
    {attributes : List (String × String)} {ps : List Property}
    (ok : readProperties kind name attributes = .ok ps) :
    ∀ p ∈ ps, p.state? = none ∧ ∃ key raw, kind.table.property key raw = .ok (some p) := by
  induction attributes generalizing ps with
  | nil =>
    cases ok
    simp
  | cons first rest ih =>
    obtain ⟨key, raw⟩ := first
    rw [readProperties] at ok
    split at ok
    · exact ih ok
    · obtain ⟨found, read, ok⟩ := Result.bindOk.mp ok
      split at ok
      · cases ok
      · rename_i property
        simp only at ok
        split at ok
        · cases ok
        · rename_i stateless
          obtain ⟨others, more, last⟩ := Result.bindOk.mp ok
          cases last
          intro p member
          rcases List.mem_cons.mp member with rfl | later
          · exact ⟨by simpa using stateless, key, raw, read⟩
          · exact ih more p later

theorem readParts {node : Markup.Node} {s : Style} (ok : read node = .ok s) :
    (∃ attributes, readProperties s.kind s.name attributes = .ok s.properties) ∧
      ∀ name ∈ s.extend, ∃ raw, StyleName.parse raw = .ok name := by
  unfold read at ok
  split at ok
  · cases ok
  · obtain ⟨name, _, ok⟩ := Result.bindOk.mp ok
    obtain ⟨_, _, named⟩ := Result.bindOk.mp ok
    simp only at named
    split at named
    · obtain ⟨extend, names, ok⟩ := Result.bindOk.mp named
      obtain ⟨ps, properties, last⟩ := Result.bindOk.mp ok
      cases last
      refine ⟨⟨_, properties⟩, fun name inside => ?_⟩
      unfold Result.ofParse at names
      split at names
      · rename_i listed
        cases names
        obtain ⟨raw, _, parsed⟩ := forallRight (Result.mapMOk listed) inside
        exact ⟨raw, parsed⟩
      · cases names
    · obtain ⟨extend, none, ok⟩ := Result.bindOk.mp named
      obtain ⟨ps, properties, last⟩ := Result.bindOk.mp ok
      cases last
      cases none
      exact ⟨⟨_, properties⟩, by simp⟩

theorem readValues {node : Markup.Node} {s : Style} (ok : read node = .ok s) :
    ∀ p ∈ s.properties, (∃ v, p.binding = .value v) ∧ p.description ∈ s.kind.table := by
  intro p inside
  obtain ⟨⟨attributes, properties⟩, _⟩ := readParts ok
  obtain ⟨stateless, key, raw, found⟩ := readPropertiesFound properties p inside
  obtain ⟨_, bound, listed⟩ := PropertyTable.propertyRead found
  rcases bound with value | ⟨_, bound⟩
  · exact ⟨value, listed⟩
  · simp [Property.state?, bound] at stateless

/- Only what a method sets has states, and no attribute of a text is set by one. -/
theorem readStateless {node : Markup.Node} {s : Style} (ok : read node = .ok s)
    (kind : s.kind = .attributedText) : ∀ p ∈ s.properties, p.controlState = none := by
  intro p inside
  obtain ⟨⟨attributes, properties⟩, _⟩ := readParts ok
  obtain ⟨_, key, raw, found⟩ := readPropertiesFound properties p inside
  have assigned : (attributedTextTable.all fun d => d.setter.method?.isNone) = true := by
    decide +kernel
  rw [kind] at found
  unfold PropertyTable.property at found
  split at found
  · cases found
  · rename_i d state known
    obtain ⟨binding, _, same⟩ := Result.mapOk.mp found
    cases same
    have none := List.all_eq_true.mp assigned d (PropertyTable.findMem known)
    exact PropertyTable.findAssigned known (Option.isNone_iff_eq_none.mp none)

end Style

def StyleGroup.IsRead (g : StyleGroup) : Prop := ∀ s ∈ g.styles, ∃ node, Style.read node = .ok s

theorem StyleGroup.readStylesRead {g h : StyleGroup} {nodes : List Markup.Node} (before : g.IsRead)
    (ok : readStyles g nodes = .ok h) : h.IsRead := by
  induction nodes generalizing g with
  | nil =>
    cases ok
    exact before
  | cons node rest ih =>
    rw [readStyles] at ok
    obtain ⟨style, read, ok⟩ := Result.bindOk.mp ok
    split at ok
    · cases ok
    · refine ih ?_ ok
      intro s member
      rcases List.mem_append.mp member with earlier | last
      · exact before s earlier
      · cases List.mem_singleton.mp last
        exact ⟨node, read⟩

theorem StyleGroup.readRead {node : Markup.Node} {fallback : Option String} {g : StyleGroup}
    (ok : read node fallback = .ok g) : g.IsRead := by
  unfold read at ok
  split at ok <;> try contradiction
  rename_i name _
  exact readStylesRead (g := { name }) (by simp [IsRead]) ok

end ViewForge
